import Frontend.Proofs.Lexing.Checking
import Frontend.Session
import Mathlib.Data.List.DropRight
import Mathlib.Data.Nat.Notation

/-!
# What a session keeps account of

A session comes to report a message in three ways: the file cannot be lexed, a program is not in
order, or the message is handed to it as such.  Whatever a step does, it reports one message or none,
and which of the two does not depend on what the session has done before: `Step.reported?` tells it
from the file and the configuration alone, and `Step.answer` does so for the answer.  That a step
keeps to both is shown once (`tallies_step`), and it follows that the tally of a session is a count
over the steps since it was last renewed (`after_start`).

A renewed session has no terminal any more, so nothing of what it does afterwards arrives there.
All this holds after every step of every session (`run_accounts`), up to the first step that has no
outcome.  Which step that is can be told from the file alone, since no step changes it.
-/

namespace Frontend

open TokenStream (items)

/-- What the lexing of a file yields. -/
def Config.items (config : Config) (file : SourceFile) : List Item :=
  if config.checkOperators then
    TokenStream.items (OperatorCheck.of (Lexer.start config.recognizers false file.chars))
  else TokenStream.items (Lexer.start config.recognizers false file.chars)

/-- The tally after a message of the given severity, or after none. -/
def Tally.record (t : Tally) (message : Option Severity) : Tally := message.elim t t.count

namespace Session

namespace Step

/-- The severity of the message that a step reports, if it reports one. -/
def reported? (config : Config) (file : SourceFile) : Step → Option Severity
  | lex | listTokens => if (config.items file).all Except.isOk then none else some .error
  | check p => if p.check.value.isOk then none else some .error
  | message severity _ | messageAt severity _ => some severity
  | statistics | renew => none

/-- The answer to a step, whatever came before it. -/
def answer (config : Config) (file : SourceFile) : Step → Answer
  | lex => .tokens (start config file).tokens.value.toOption
  | listTokens => .listing (((start config file).tokens.value.toOption.map listing).getD "")
  | check p => .bindings p.check.value.toOption
  | statistics | message _ _ | messageAt _ _ | renew => .nothing

end Step

variable {s : Session} {step : Step} {config : Config} {file : SourceFile}

/-! ## One step -/

theorem isOk_tokens (s : Session) :
    s.tokens.value.isOk = (s.config.items s.file).all Except.isOk := by
  unfold tokens Config.items
  split <;> exact TokenStream.isOk_collect _

/-- The outcome of a step that answers with `result` and reports one message, or none: the message
goes into the tally, and what is written only arrives at a terminal that is there. -/
def Tallies {α : Type} (s : Session) (message : Option Severity) (result : α)
    (o : Outcome α) : Prop :=
  ∃ out, o = ⟨result, if s.attached then out else [], { s with tally := s.tally.record message }⟩

section

variable {α β : Type} {message : Option Severity} {result : α} {o : Outcome α}

theorem tallies_silent (s : Session) (result : α) : s.Tallies none result (s.silent result) := by
  refine ⟨[], ?_⟩
  rw [ite_self]
  rfl

theorem tallies_report (s : Session) (severity : Severity) (result : α) (out : Output) :
    s.Tallies (some severity) result (s.report severity result out) := ⟨out, rfl⟩

/-- The same outcome with another answer. -/
theorem Tallies.map (h : s.Tallies message result o) (f : α → β) :
    s.Tallies message (f result) { o with result := f o.result } := by
  obtain ⟨out, rfl⟩ := h
  exact ⟨out, rfl⟩

end

theorem tallies_lex (s : Session) :
    s.Tallies (Step.lex.reported? s.config s.file) s.tokens.value.toOption s.lex.value := by
  rw [Step.reported?, ← isOk_tokens]
  cases h : s.tokens.value with
  | ok tokens =>
      have hlex : s.lex.value = s.silent (some tokens) := by simp [lex, h]
      rw [hlex]
      exact s.tallies_silent _
  | error e =>
      have hlex : s.lex.value = s.report .error none
          (Severity.error.reportAt s.file (e.map LexErrorKind.message)) := by simp [lex, h]
      rw [hlex]
      exact s.tallies_report _ _ _

theorem tallies_check (s : Session) (p : Program) :
    s.Tallies ((Step.check p).reported? s.config s.file) p.check.value.toOption
      (s.check p).value := by
  rw [Step.reported?]
  cases h : p.check.value with
  | ok bindings =>
      have hcheck : (s.check p).value = s.silent (some bindings) := by simp [check, h]
      rw [hcheck]
      exact s.tallies_silent _
  | error e =>
      have hcheck : (s.check p).value =
          s.report .error none (Severity.error.report e.message) := by simp [check, h]
      rw [hcheck]
      exact s.tallies_report _ _ _

/-- **Every step but a renewal answers in the same way whatever came before it, and reports the
message that the file and the configuration make it report.** -/
theorem tallies_step (h : step ≠ .renew) :
    s.Tallies (step.reported? s.config s.file) (step.answer s.config s.file)
      (s.step step).value := by
  cases step with
  | lex => exact s.tallies_lex.map Answer.tokens
  | listTokens =>
      exact s.tallies_lex.map fun tokens => Answer.listing ((tokens.map listing).getD "")
  | check p => exact (s.tallies_check p).map Answer.bindings
  | statistics | message _ _ | messageAt _ _ => exact ⟨_, rfl⟩
  | renew => exact absurd rfl h

theorem value_step_renew (s : Session) :
    (s.step .renew).value = ⟨.nothing, [], { s with tally := .zero, attached := false }⟩ := rfl

/-- No answer depends on what came before. -/
theorem result_step (s : Session) (step : Step) :
    (s.step step).value.result = step.answer s.config s.file := by
  by_cases hrenew : step = .renew
  · subst hrenew
    rfl
  · obtain ⟨out, hout⟩ := tallies_step (s := s) hrenew
    rw [hout]

theorem written_of_not_attached (h : s.attached = false) :
    (s.step step).value.written = [] := by
  by_cases hrenew : step = .renew
  · subst hrenew
    rfl
  · obtain ⟨out, hout⟩ := tallies_step (s := s) hrenew
    rw [hout]
    simp [h]

/-! ## Many steps -/

/-- The session after some steps. -/
def after (s : Session) (steps : List Step) : Session :=
  steps.foldl (fun s step => (s.step step).value.session) s

/-- The steps from the last renewal on, or all of them if there was none. -/
def sinceRenewal (steps : List Step) : List Step := steps.rtakeWhile (· ≠ .renew)

/-- How many messages of a severity were reported since the last renewal. -/
def count (config : Config) (file : SourceFile) (severity : Severity) (steps : List Step) : ℕ :=
  (sinceRenewal steps).countP fun step => step.reported? config file = some severity

theorem after_concat (s : Session) (steps : List Step) (step : Step) :
    s.after (steps ++ [step]) = ((s.after steps).step step).value.session := by
  simp [after]

theorem value_run_cons (s : Session) (step : Step) (steps : List Step) :
    (run (step :: steps) s).value = if step.isFeasible s.file then
      (s.step step).value :: (run steps (s.step step).value.session).value else [] := by
  rw [run]
  split <;> rfl

/-- A session stays with its file. -/
theorem file_step (s : Session) (step : Step) : (s.step step).value.session.file = s.file := by
  by_cases hrenew : step = .renew
  · subst hrenew
    rfl
  · obtain ⟨out, hout⟩ := tallies_step (s := s) hrenew
    rw [hout]

theorem file_after (s : Session) (steps : List Step) : (s.after steps).file = s.file := by
  induction steps generalizing s with
  | nil => rfl
  | cons step steps ih => exact (ih _).trans (s.file_step step)

/-- After steps that all have an outcome a session goes on from where they have led to. -/
theorem value_run_append (before later : List Step) (s : Session) :
    (run (before ++ later) s).value = (run before s).value ++
      if before.all (·.isFeasible s.file) then (run later (s.after before)).value else [] := by
  induction before generalizing s with
  | nil => rfl
  | cons first before ih =>
      rw [List.cons_append, value_run_cons, value_run_cons, List.all_cons]
      cases first.isFeasible s.file with
      | true =>
          rw [if_pos rfl, if_pos rfl, ih, file_step, Bool.true_and]
          rfl
      | false => rfl

theorem length_value_run (steps : List Step) (s : Session) :
    (run steps s).value.length = (steps.takeWhile (·.isFeasible s.file)).length := by
  induction steps generalizing s with
  | nil => rfl
  | cons first steps ih =>
      rw [value_run_cons, List.takeWhile_cons]
      cases first.isFeasible s.file with
      | true => rw [if_pos rfl, if_pos rfl, List.length_cons, List.length_cons, ih, file_step]
      | false => rfl

/-- A step has an outcome if it and all steps before it are feasible; else the session has ended
with one of them. -/
theorem value_run_append_cons (before later : List Step) (step : Step) (s : Session) :
    (run (before ++ step :: later) s).value = (run before s).value ++
      if (before ++ [step]).all (·.isFeasible s.file) then
        ((s.after before).step step).value ::
          (run later ((s.after before).step step).value.session).value
      else [] := by
  rw [value_run_append, value_run_cons, file_after, List.all_append, List.all_cons, List.all_nil,
    Bool.and_true]
  cases before.all (·.isFeasible s.file) with
  | true => rw [if_pos rfl, Bool.true_and]
  | false => rfl

theorem value_run_getElem? (before later : List Step) (step : Step) (s : Session) :
    (run (before ++ step :: later) s).value[before.length]? =
      if (before ++ [step]).all (·.isFeasible s.file) then
        some ((s.after before).step step).value
      else none := by
  have hlength := length_value_run before s
  rw [value_run_append_cons]
  split
  · next hall =>
    -- all steps before have an outcome, so this one comes next
    rw [List.all_append, Bool.and_eq_true, List.all_eq_true] at hall
    rw [List.takeWhile_eq_self_iff.mpr hall.1] at hlength
    rw [List.getElem?_append_right hlength.le, hlength, Nat.sub_self, List.getElem?_cons_zero]
  · rw [List.append_nil, List.getElem?_eq_none_iff, hlength]
    exact (List.takeWhile_prefix _).length_le

theorem getElem?_run_eq_none_iff (before later : List Step) (step : Step) (s : Session) :
    (run (before ++ step :: later) s).value[before.length]? = none ↔
      ∃ call ∈ before ++ [step], call.isFeasible s.file = false := by
  have hany : (∃ call ∈ before ++ [step], call.isFeasible s.file = false) ↔
      (before ++ [step]).all (·.isFeasible s.file) = false := by
    simp only [List.all_eq_false, Bool.not_eq_true]
  rw [value_run_getElem?, hany]
  cases (before ++ [step]).all (·.isFeasible s.file) <;> simp

theorem eq_of_getElem?_run {before later : List Step} {o : Outcome Answer}
    (h : (run (before ++ step :: later) s).value[before.length]? = some o) :
    o = ((s.after before).step step).value := by
  rw [value_run_getElem?] at h
  exact (Option.some.inj (Option.ite_none_right_eq_some.mp h).2).symm

theorem count_concat_renew (severity : Severity) (steps : List Step) :
    count config file severity (steps ++ [.renew]) = 0 := by
  rw [count, sinceRenewal, List.rtakeWhile_concat_neg _ _ _ (by simp), List.countP_nil]

theorem count_concat (h : step ≠ .renew) (severity : Severity) (steps : List Step) :
    count config file severity (steps ++ [step]) = count config file severity steps +
      if step.reported? config file = some severity then 1 else 0 := by
  rw [count, sinceRenewal, List.rtakeWhile_concat_pos _ _ _ (by simpa using h), List.countP_append,
    List.countP_singleton]
  simp [count, sinceRenewal]

theorem record_eq (t : Tally) (message : Option Severity) :
    t.record message = ⟨t.errors + if message = some .error then 1 else 0,
      t.warnings + if message = some .warning then 1 else 0⟩ := by
  cases message with
  | none => rfl
  | some severity => cases severity <;> rfl

/-- **The tally of a session counts the messages since it was last renewed.** -/
theorem after_start (config : Config) (file : SourceFile) (steps : List Step) :
    (start config file).after steps =
      ⟨config, file, ⟨count config file .error steps, count config file .warning steps⟩,
        decide (.renew ∉ steps)⟩ := by
  induction steps using List.reverseRecOn with
  | nil => rfl
  | append_singleton steps step ih =>
      rw [after_concat, ih]
      by_cases hrenew : step = .renew
      · subst hrenew
        rw [value_step_renew, count_concat_renew, count_concat_renew]
        simp [Tally.zero]
      · obtain ⟨out, hout⟩ := tallies_step hrenew
        rw [hout, count_concat hrenew, count_concat hrenew, record_eq]
        simp [eq_comm, hrenew]

/-! ## Refusals -/

theorem toOption_eq_none_iff {ε α : Type} {x : Except ε α} :
    x.toOption = none ↔ ¬ x.isOk = true := by
  cases x with
  | ok a => exact ⟨nofun, fun h => absurd rfl h⟩
  | error e => exact ⟨fun _ => nofun, fun _ => rfl⟩

/-- Nothing is lexed exactly if an error is reported. -/
theorem answer_lex_eq_none_iff : Step.answer config file .lex = .tokens none ↔
    Step.lex.reported? config file = some .error := by
  rw [Step.answer, Answer.tokens.injEq, toOption_eq_none_iff, isOk_tokens, Step.reported?]
  simp [start]

/-- Nothing comes of a program exactly if an error is reported. -/
theorem answer_check_eq_none_iff {p : Program} :
    Step.answer config file (.check p) = .bindings none ↔
      (Step.check p).reported? config file = some .error := by
  rw [Step.answer, Answer.bindings.injEq, toOption_eq_none_iff, Step.reported?]
  simp

/-- A step that refuses exactly when it reports an error adds one error then, and none otherwise. -/
theorem refuses_or_not {refusal : Answer} (hstep : step ≠ .renew)
    (h : step.answer config file = refusal ↔ step.reported? config file = some .error)
    (steps : List Step) :
    step.answer config file = refusal ∧
        count config file .error (steps ++ [step]) = count config file .error steps + 1 ∨
      step.answer config file ≠ refusal ∧
        count config file .error (steps ++ [step]) = count config file .error steps := by
  rw [count_concat hstep]
  by_cases hreport : step.reported? config file = some .error
  · exact .inl ⟨h.mpr hreport, by rw [if_pos hreport]⟩
  · exact .inr ⟨fun hanswer => hreport (h.mp hanswer), by rw [if_neg hreport, Nat.add_zero]⟩

/-- **A session keeps account of its messages.**  A step has an outcome if it is feasible and the
session has come as far, and then the tally counts the messages since the last renewal.  Lexing and
checking report one error if nothing comes of them and else none; every answer is the one to the same
step of a session that has only just been started; and once a session was renewed nothing arrives at
its terminal. -/
theorem run_accounts (config : Config) (file : SourceFile) (before : List Step) (step : Step)
    (later : List Step) :
    let outcome? := (run (before ++ step :: later) (start config file)).value[before.length]?
    (outcome? = none ↔ ∃ call ∈ before ++ [step], call.isFeasible file = false) ∧
    ∀ outcome, outcome? = some outcome →
      outcome.session.tally.errors = count config file .error (before ++ [step]) ∧
      outcome.session.tally.warnings = count config file .warning (before ++ [step]) ∧
      (outcome.session.tally.errored = true ↔ 0 < outcome.session.tally.errors) ∧
      (step = .lex →
        outcome.result = .tokens none ∧
          outcome.session.tally.errors = count config file .error before + 1 ∨
        outcome.result ≠ .tokens none ∧
          outcome.session.tally.errors = count config file .error before) ∧
      (∀ p, step = .check p →
        outcome.result = .bindings none ∧
          outcome.session.tally.errors = count config file .error before + 1 ∨
        outcome.result ≠ .bindings none ∧
          outcome.session.tally.errors = count config file .error before) ∧
      outcome.result = ((start config file).step step).value.result ∧
      (.renew ∈ before → outcome.written = []) := by
  refine ⟨getElem?_run_eq_none_iff before later step (start config file), ?_⟩
  intro outcome houtcome
  obtain rfl := eq_of_getElem?_run houtcome
  have hbefore := after_start config file before
  have hsession := after_start config file (before ++ [step])
  rw [after_concat] at hsession
  -- the tally is known now, and the answer is that of a session without a past
  have hresult : (((start config file).after before).step step).value.result =
      step.answer config file := by rw [result_step, hbefore]
  refine ⟨by rw [hsession], by rw [hsession], decide_eq_true_iff, ?_, ?_, ?_, ?_⟩
  · rintro rfl
    rw [hresult, hsession]
    have hstep : Step.lex ≠ .renew := nofun
    exact refuses_or_not hstep answer_lex_eq_none_iff before
  · rintro p rfl
    rw [hresult, hsession]
    have hstep : Step.check p ≠ .renew := nofun
    exact refuses_or_not hstep answer_check_eq_none_iff before
  · rw [hresult]
    exact (result_step (start config file) step).symm
  · intro hrenew
    refine written_of_not_attached ?_
    rw [hbefore]
    simpa using hrenew

end Session

end Frontend
