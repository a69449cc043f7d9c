import Frontend.Proofs.Lexing.Checking
import Frontend.Proofs.Lexing.Discarding
import Frontend.Proofs.Session.Accounting
import Frontend.Proofs.Typing.FirstError

/-!
# What the journal says of a phase

Each phase of a session leaves a trace in the journal, and the trace tells how the phase went.

Lexing is described by its `Course` through the items of the source, discarded lexemes included: it
may take all of them, meet an error among them, or refuse an operator, which it has recognized by
then.  A lexer that leaves out lexemes and checks operators makes one attempt after the other, and
each of them either ends the course or adds one event and goes on from the next place
(`Lexer.tokens_of_attempt_ok`).  So the events are those of the course (`Lexer.exists_course`).

A check says nothing until all signatures were read, and then has one event for each declaration, up
to the first that is not in order (`Program.events_checkDecls`).
-/

namespace Frontend

open TokenStream (collect items)

/-- What is sent of an event: how much it matters, and what it says. -/
def Event.record (e : Event) : Level × String := (e.level, e.text)

/-- The row and the column of a place, both counted from one. -/
def Position.place (p : Position) : String :=
  toString (p.row + 1) ++ ":" ++ toString (p.col + 1)

/-- The text of a token between quotes, the name of its class, and the place where it starts; if it
is longer than a character, also the place of its last one. -/
def Token.record (token : Token) : Level × String :=
  (.debug, "lexed \"" ++ token.value.text ++ "\" of class \"" ++ token.value.tokenClass.name ++
    "\" at " ++ token.span.first.place ++
    if token.span.first = token.span.last then "" else "-" ++ token.span.last.place)

/-- Operators are checked, and the language does not have the one of this token. -/
def Token.Refused (checks : Bool) (token : Token) : Prop :=
  checks = true ∧ token.value.tokenClass = .operator ∧ token.value.text ∉ mhOperators

theorem Span.render_eq (s : Span) :
    s.render = s.first.place ++ if s.first = s.last then "" else "-" ++ s.last.place := by
  rw [render, isSingle]
  by_cases h : s.first = s.last
  · simp only [h, decide_true, if_true, String.append_empty]
    rfl
  · simp only [h, decide_false, Bool.false_eq_true, if_false, String.append_assoc]
    rfl

theorem Event.record_recognized (token : Token) : (recognized token).record = token.record := by
  have hquote : "lexed " ++ "\"" = "lexed \"" := rfl
  have hat : "\"" ++ " at " = "\" at " := rfl
  show (Level.debug, "lexed " ++ (token.value.render ++ " at " ++ token.span.render)) = _
  rw [Token.record, Span.render_eq, Lexeme.render, ← hquote, ← hat]
  simp only [String.append_assoc]

/-! ## The course of lexing -/

/-- The ways through the items of a source: the tokens on the way, and the error at its end if it
does not go through all of them. -/
inductive Course (checks : Bool) (items : List Item) : List Token → Option LexError → Prop where
  | complete {trace} : items = trace.map .ok → (∀ token ∈ trace, ¬ token.Refused checks) →
      Course checks items trace none
  | unexpected {trace e} (rest) : items = trace.map .ok ++ .error e :: rest →
      (∀ token ∈ trace, ¬ token.Refused checks) → Course checks items trace (some e)
  | refused (trace operator rest) : items = (trace ++ [operator]).map .ok ++ rest →
      (∀ token ∈ trace, ¬ token.Refused checks) → operator.Refused checks →
      Course checks items (trace ++ [operator])
        (some ⟨operator.span, .unknownOperator operator.value.text⟩)

/-- A token that is not refused only makes the way longer. -/
theorem Course.cons {checks : Bool} {rest : List Item} {trace : List Token} {e : Option LexError}
    {token : Token} (htoken : ¬ token.Refused checks) (h : Course checks rest trace e) :
    Course checks (.ok token :: rest) (token :: trace) e := by
  cases h with
  | complete hitems hall =>
      refine .complete ?_ (List.forall_mem_cons.mpr ⟨htoken, hall⟩)
      rw [hitems, List.map_cons]
  | unexpected later hitems hall =>
      refine .unexpected later ?_ (List.forall_mem_cons.mpr ⟨htoken, hall⟩)
      rw [hitems, List.map_cons, List.cons_append]
  | refused trace operator later hitems hall hoperator =>
      refine .refused (token :: trace) operator later ?_
        (List.forall_mem_cons.mpr ⟨htoken, hall⟩) hoperator
      rw [hitems, List.cons_append, List.map_cons, List.cons_append]

/-! ## One event before the rest -/

section

variable {σ : Type} [TokenStream σ] {s s' : σ} {e : Event}

theorem TokenStream.collect_of_next_eq_note (h : next s = .note e (next s')) :
    collect s = .note e (collect s') := by
  rcases hs' : next s' with ⟨⟨_ | error | token, rest⟩, events⟩ <;> rw [hs'] at h
  · rw [collect_of_none hs', collect_of_none h]
    rfl
  · rw [collect_of_error hs', collect_of_error h]
    rfl
  · rw [collect_of_token hs', collect_of_token h]
    rfl

theorem OperatorCheck.next_of_next_eq_note
    (h : TokenStream.next s = .note e (TokenStream.next s')) :
    TokenStream.next (of s) = .note e (TokenStream.next (of s')) := by
  rcases hs' : TokenStream.next s' with ⟨⟨answer, rest⟩, events⟩
  rw [hs'] at h
  rw [next_of_next_inner (s := of s') rfl hs', next_of_next_inner (s := of s) rfl h]
  rfl

end

/-! ## The tokens from an attempt on -/

namespace Lexer

variable {l : Lexer} {checks : Bool} {token : Token} {c : Cursor}

/-- The tokens of a lexer, its operators checked or not. -/
def tokens (l : Lexer) (checks : Bool) : Traced (Except LexError (List Token)) :=
  if checks then collect (OperatorCheck.of l) else collect l

theorem tokens_of_attempt_none (hf : l.finished = false)
    (h : l.cursor.attempt l.recognizers = none) : l.tokens checks = ⟨.ok [], []⟩ := by
  have hnext := next_of_attempt_none hf h
  cases checks with
  | false => exact TokenStream.collect_of_none hnext
  | true =>
      have hchecked := OperatorCheck.next_of_next_inner (s := OperatorCheck.of l) rfl hnext
      exact TokenStream.collect_of_none hchecked

theorem tokens_of_attempt_error {e : LexError} (hf : l.finished = false)
    (h : l.cursor.attempt l.recognizers = some (.error e, c)) :
    l.tokens checks = ⟨.error e, []⟩ := by
  have hnext := next_of_attempt_error hf h
  cases checks with
  | false => exact TokenStream.collect_of_error hnext
  | true =>
      have hchecked := OperatorCheck.next_of_next_inner (s := OperatorCheck.of l) rfl hnext
      exact TokenStream.collect_of_error hchecked

theorem tokens_of_attempt_discarded (hf : l.finished = false) (hdrop : l.yieldsDiscarded = false)
    (hdiscarded : token.value.isDiscarded = true)
    (h : l.cursor.attempt l.recognizers = some (.ok token, c)) :
    l.tokens checks = .note (.recognized token) ({ l with cursor := c }.tokens checks) := by
  have hnext := next_of_attempt_discarded hf hdrop hdiscarded h
  cases checks with
  | false => exact TokenStream.collect_of_next_eq_note hnext
  | true =>
      exact TokenStream.collect_of_next_eq_note (OperatorCheck.next_of_next_eq_note hnext)

theorem tokens_of_attempt_visible (hf : l.finished = false)
    (hvisible : token.value.isDiscarded = false) (htoken : ¬ token.Refused checks)
    (h : l.cursor.attempt l.recognizers = some (.ok token, c)) :
    ∃ token', l.tokens checks = .note (.recognized token)
      ⟨({ l with cursor := c }.tokens checks).value.map (token' :: ·),
        ({ l with cursor := c }.tokens checks).events⟩ := by
  have hnext := next_of_attempt_visible hf hvisible h
  cases checks with
  | false =>
      have htokens := TokenStream.collect_of_token (s := l) hnext
      exact ⟨token, htokens⟩
  | true =>
      have hknown : token.value.tokenClass = .operator → token.value.text ∈ mhOperators := by
        intro hclass
        by_contra htext
        exact htoken ⟨rfl, hclass, htext⟩
      have hchecked := OperatorCheck.next_of_next_inner (s := OperatorCheck.of l) rfl hnext
      rw [Option.map_some, Item.checkOperator_ok hknown] at hchecked
      exact ⟨token.map Lexeme.checked, TokenStream.collect_of_token hchecked⟩

/-- An operator that is refused was recognized before, and nothing is recognized after it. -/
theorem tokens_of_attempt_refused (hf : l.finished = false) (htoken : token.Refused checks)
    (h : l.cursor.attempt l.recognizers = some (.ok token, c)) :
    l.tokens checks =
      ⟨.error ⟨token.span, .unknownOperator token.value.text⟩, [.recognized token]⟩ := by
  obtain ⟨rfl, hclass, htext⟩ := htoken
  have hvisible : token.value.isDiscarded = false := by
    rw [Lexeme.isDiscarded, hclass]
    rfl
  have hnext := next_of_attempt_visible hf hvisible h
  have herror : Item.checkOperator (.ok token) =
      .error ⟨token.span, .unknownOperator token.value.text⟩ := by
    show token.checkOperator = _
    unfold Token.checkOperator
    rw [if_neg (not_not_intro hclass), if_neg htext]
  have hchecked := OperatorCheck.next_of_next_inner (s := OperatorCheck.of l) rfl hnext
  rw [Option.map_some, herror] at hchecked
  exact TokenStream.collect_of_error hchecked

/-- **An attempt that is not refused has one event, and the others are those from the next place
on.**  The token may be handed out or not; either way the same error ends the rest. -/
theorem tokens_of_attempt_ok (hf : l.finished = false) (hdrop : l.yieldsDiscarded = false)
    (htoken : ¬ token.Refused checks)
    (h : l.cursor.attempt l.recognizers = some (.ok token, c)) :
    (l.tokens checks).events = .recognized token :: ({ l with cursor := c }.tokens checks).events ∧
      ∀ e, (l.tokens checks).value = .error e ↔
        ({ l with cursor := c }.tokens checks).value = .error e := by
  by_cases hdiscarded : token.value.isDiscarded = true
  · rw [tokens_of_attempt_discarded hf hdrop hdiscarded h]
    exact ⟨rfl, fun e => Iff.rfl⟩
  · rw [Bool.not_eq_true] at hdiscarded
    obtain ⟨token', htokens⟩ := tokens_of_attempt_visible hf hdiscarded htoken h
    rw [htokens]
    refine ⟨rfl, ?_⟩
    intro e
    show ({ l with cursor := c }.tokens checks).value.map (token' :: ·) = .error e ↔ _
    cases ({ l with cursor := c }.tokens checks).value with
    | error e' => simp [Except.map]
    | ok tokens => simp [Except.map]

/-- **The events of a lexer are those of a course through all items from its place on.** -/
theorem exists_course (checks : Bool) (hf : l.finished = false)
    (hdrop : l.yieldsDiscarded = false) :
    ∃ trace error, Course checks (items l.keeping) trace error ∧
      (l.tokens checks).events = trace.map .recognized ∧
      ∀ e, (l.tokens checks).value = .error e ↔ error = some e := by
  -- by the length of the text ahead, which every attempt that goes on makes shorter
  induction hn : l.cursor.pending.length using Nat.strongRecOn generalizing l with
  | _ n ih =>
  have hf' : l.keeping.finished = false := hf
  cases hattempt : l.cursor.attempt l.recognizers with
  | none =>
      have hitems : items l.keeping = [] := items_of_attempt_none hf' hattempt
      rw [hitems, tokens_of_attempt_none hf hattempt]
      exact ⟨[], none, .complete rfl nofun, rfl, fun e => iff_of_false nofun nofun⟩
  | some outcome =>
      obtain ⟨e | token, c⟩ := outcome
      · have hitems : items l.keeping = [.error e] := items_of_attempt_error hf' hattempt
        rw [hitems, tokens_of_attempt_error hf hattempt]
        refine ⟨[], some e, .unexpected [] rfl nofun, rfl, ?_⟩
        intro e'
        rw [Except.error.injEq, Option.some.injEq]
      · rw [items_keeping_of_attempt_ok hf hattempt]
        by_cases htoken : token.Refused checks
        · rw [tokens_of_attempt_refused hf htoken hattempt]
          refine ⟨[token], _, .refused [] token _ rfl nofun htoken, rfl, ?_⟩
          intro e
          rw [Except.error.injEq, Option.some.injEq]
        · have hshorter : c.pending.length < n := hn ▸ Cursor.length_pending_lt hattempt
          obtain ⟨trace, error, hcourse, hevents, herror⟩ :=
            ih _ hshorter (l := { l with cursor := c }) hf hdrop rfl
          obtain ⟨hfirst, hrest⟩ := tokens_of_attempt_ok hf hdrop htoken hattempt
          refine ⟨token :: trace, error, hcourse.cons htoken, ?_, fun e => ?_⟩
          · rw [hfirst, hevents, List.map_cons]
          · rw [hrest, herror]

end Lexer

/-! ## The events of a check -/

namespace Decl

variable {env : TypeEnv} {d : Decl}

/-- Whether a declaration is in order. -/
def passes (env : TypeEnv) (d : Decl) : Bool := (d.verify env).isOk

/-- What is noted of a declaration that is in order. -/
def event (d : Decl) : Event := .checked d.signature.name (.ofExpr d.signature.type)

def record (d : Decl) : Level × String :=
  (.debug, d.signature.name ++ " :: " ++ (Ty.ofExpr d.signature.type).render ++ " checked")

theorem passes_eq_true_iff : d.passes env = true ↔ ∃ b, d.verify env = .ok b := by
  rw [passes]
  cases d.verify env with
  | ok b => exact iff_of_true rfl ⟨b, rfl⟩
  | error e => exact iff_of_false nofun nofun

theorem check_of_passes (h : d.passes env = true) : d.check env = ⟨.ok d.binding, [d.event]⟩ := by
  unfold check
  obtain ⟨b, hverify⟩ := passes_eq_true_iff.mp h
  rw [hverify, eq_binding_of_verify hverify]
  rfl

theorem check_of_not_passes (h : d.passes env = false) :
    ∃ e, d.check env = ⟨.error e, []⟩ := by
  unfold check
  cases hverify : d.verify env with
  | ok b =>
      rw [passes, hverify] at h
      contradiction
  | error e => exact ⟨e, rfl⟩

end Decl

namespace Program

variable {p : Program}

/-- **A check notes each declaration before the first that is not in order, and that there was none
if there was none.**  Where no name is declared twice no binding is refused. -/
theorem events_checkDecls (env : TypeEnv) (hnodup : p.names.Nodup) {earlier decls : List Decl}
    (hsplit : p.decls = earlier ++ decls) :
    (checkDecls env ⟨earlier.map Decl.binding⟩ decls).events =
      (decls.takeWhile (Decl.passes env)).map Decl.event ++
        if decls.all (Decl.passes env) then [.programChecked] else [] := by
  induction decls generalizing earlier with
  | nil => rfl
  | cons d decls ih =>
      rw [checkDecls, List.takeWhile_cons, List.all_cons]
      cases hpasses : d.passes env with
      | false =>
          obtain ⟨e, hcheck⟩ := Decl.check_of_not_passes hpasses
          rw [hcheck, Traced.andThen_of_error rfl]
          rfl
      | true =>
          have hinsert := insert_binding_of_nodup hnodup hsplit
          have hsplit' : p.decls = (earlier ++ [d]) ++ decls := by
            rw [hsplit, List.append_assoc, List.singleton_append]
          rw [Decl.check_of_passes hpasses, Traced.andThen_of_ok rfl, hinsert, if_pos rfl,
            Bool.true_and, List.map_cons]
          exact congrArg (d.event :: ·) (ih hsplit')

theorem events_signatureEnv (p : Program) :
    p.signatureEnv.events = if p.names.Nodup then [.signaturesRead] else [] := by
  have hvalue : (∃ env, p.signatureEnv.value = .ok env) ↔ p.names.Nodup := by
    simp only [value_signatureEnv_eq_ok_iff, exists_and_left, exists_eq, and_true]
  unfold signatureEnv at hvalue ⊢
  cases hread : readSignatures [] p.signatures with
  | ok globals =>
      rw [hread] at hvalue
      rw [if_pos (hvalue.mp ⟨_, rfl⟩)]
      rfl
  | error e =>
      rw [hread] at hvalue
      rw [if_neg (fun hnodup => by simpa using hvalue.mpr hnodup)]
      rfl

theorem events_check (p : Program) : p.check.events = if p.names.Nodup then
    .signaturesRead :: ((p.decls.takeWhile (Decl.passes p.globalEnv)).map Decl.event ++
      if p.decls.all (Decl.passes p.globalEnv) then [.programChecked] else [])
    else [] := by
  unfold check
  by_cases hnodup : p.names.Nodup
  · have henv := value_signatureEnv_eq_ok_iff.mpr ⟨hnodup, rfl⟩
    have hdecls := events_checkDecls p.globalEnv hnodup (List.nil_append p.decls).symm
    rw [Traced.andThen_of_ok henv, events_signatureEnv, if_pos hnodup, if_pos hnodup, ← hdecls]
    rfl
  · cases henv : p.signatureEnv.value with
    | ok env => exact absurd (value_signatureEnv_eq_ok_iff.mp henv).1 hnodup
    | error e =>
        rw [Traced.andThen_of_error henv, events_signatureEnv, if_neg hnodup, if_neg hnodup]

end Program

/-! ## The phases of a session -/

namespace Session

theorem events_lex (s : Session) : s.lex.events = s.tokens.events ++
    match s.lex.value.result with
    | some tokens => [.lexed tokens.length]
    | none => [] := by
  unfold lex
  rw [Traced.events_bind]
  cases h : s.tokens.value with
  | ok tokens => simp [h, silent]
  | error e => simp [h, report]

theorem events_check (s : Session) (p : Program) : (s.check p).events = p.check.events := by
  unfold check
  rw [Traced.events_bind]
  cases p.check.value <;> exact List.append_nil _

theorem isSome_result_check (s : Session) (p : Program) :
    (s.check p).value.result.isSome = true ↔
      p.names.Nodup ∧ p.decls.all (Decl.passes p.globalEnv) = true := by
  obtain ⟨out, hcheck⟩ := s.tallies_check p
  simp only [List.all_eq_true, Decl.passes_eq_true_iff, ← Program.exists_value_check_iff]
  rw [hcheck]
  cases p.check.value with
  | ok bindings => exact iff_of_true rfl ⟨bindings, rfl⟩
  | error e => exact iff_of_false nofun nofun

end Session

/-- **The journal traces the phases.**  Lexing leaves a record for each token that was recognized,
discarded ones included, in the order of the source and up to the error that ended it; an operator
that is refused has its record as well.  If there was no error the last record has the number of
tokens.  A check leaves nothing if a name is declared twice.  Otherwise it tells that the signatures
were read, then of each declaration before the first that is not in order, and last that all are in
order if they are; it has a result exactly in this last case. -/
theorem journal_traces_phases (s : Session) (p : Program) :
    (∃ trace error,
      Course s.config.checkOperators
        (items (Lexer.start s.config.recognizers true s.file.chars)) trace error ∧
      (∀ e, s.tokens.value = .error e ↔ error = some e) ∧
      s.lex.value.result = s.tokens.value.toOption ∧
      s.lex.events.map Event.record = trace.map Token.record ++
        match s.lex.value.result with
        | some tokens => [(.debug, "lexed " ++ toString tokens.length ++ " tokens")]
        | none => []) ∧
    ((s.check p).events.map Event.record =
      if p.names.Nodup then
        (.info, "type conversions successful") ::
          ((p.decls.takeWhile (Decl.passes p.globalEnv)).map Decl.record ++
            if p.decls.all (Decl.passes p.globalEnv) then [(.info, "typecheck successful")]
            else [])
      else []) ∧
    ((s.check p).value.result.isSome = true ↔
      p.names.Nodup ∧ p.decls.all (Decl.passes p.globalEnv) = true) := by
  refine ⟨?_, ?_, s.isSome_result_check p⟩
  · obtain ⟨trace, error, hcourse, hevents, herror⟩ := Lexer.exists_course
      (l := Lexer.start s.config.recognizers false s.file.chars) s.config.checkOperators rfl rfl
    obtain ⟨out, hlex⟩ := s.tallies_lex
    have htokens : s.tokens.events = trace.map .recognized := hevents
    refine ⟨trace, error, hcourse, herror, by rw [hlex], ?_⟩
    -- first come the events of the tokens, then that of the whole file
    rw [Session.events_lex, List.map_append, htokens, List.map_map]
    refine congrArg₂ (· ++ ·) ?_ ?_
    · exact List.map_congr_left fun token _ => Event.record_recognized token
    · cases s.lex.value.result <;> rfl
  · rw [Session.events_check, Program.events_check]
    split
    · rw [List.map_cons, List.map_append, List.map_map]
      split <;> rfl
    · rfl

end Frontend
