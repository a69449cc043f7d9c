import Frontend.Lexing.Lexer
import Frontend.Lexing.Operators
import Frontend.Report.Snippet
import Frontend.Typing.Check

/-!
# Sessions

A session takes one source file through the front end.  It lexes the file and checks programs, and
reports the first error of each; it counts what it has reported, and all it writes goes to one
terminal.

A session can be renewed: the counts start again from zero, but the terminal stays with what was
written before, so from then on nothing arrives there.

The steps of a session return an `Outcome`, which has the result of the step, what arrived at the
terminal and the session after it.  No result depends on the steps before.

A message can be given a place that is none of the file, for which there may be no snippet.  Such a
step has no outcome, and the session ends with the steps before it.
-/

namespace Frontend

structure Config where
  recognizers : List Recognizer
  /-- Whether operators are checked against those of the language. -/
  checkOperators : Bool
  terminal : Terminal
deriving DecidableEq, Repr

structure Session where
  config : Config
  file : SourceFile
  /-- What was reported since the session was last renewed. -/
  tally : Tally
  /-- Whether what is written arrives at the terminal. -/
  attached : Bool
deriving DecidableEq

structure Outcome (α : Type) where
  result : α
  /-- What arrived at the terminal. -/
  written : Output
  session : Session
deriving DecidableEq

def SourceFile.load (bytes : List UInt8) : Traced (Except EncodingError SourceFile) :=
  match ofBytes bytes with
  | .ok file => .note (.loaded bytes.length) (pure (.ok file))
  | .error e => pure (.error e)

@[simp] theorem SourceFile.value_load (bytes : List UInt8) :
    (load bytes).value = ofBytes bytes := by
  unfold load; split <;> simp_all

namespace Session

def start (config : Config) (file : SourceFile) : Session := ⟨config, file, .zero, true⟩

variable {α : Type} (s : Session)

/-! ## Writing -/

/-- A step that reports nothing. -/
def silent (result : α) : Outcome α := ⟨result, [], s⟩

/-- A step that only writes. -/
def write (out : Output) : Outcome Unit := ⟨(), if s.attached then out else [], s⟩

/-- A step that reports a message. -/
def report (severity : Severity) (result : α) (out : Output) : Outcome α :=
  ⟨result, if s.attached then out else [], { s with tally := s.tally.count severity }⟩

def message (severity : Severity) (text : String) : Outcome Unit :=
  s.report severity () (severity.report text)

def messageAt (severity : Severity) (text : Located String) : Outcome Unit :=
  s.report severity () (severity.reportAt s.file text)

def statistics : Outcome Unit := s.write s.tally.statistics

def renew : Outcome Unit := ⟨(), [], { s with tally := .zero, attached := false }⟩

/-! ## The phases -/

/-- The tokens of the file, or its first lexical error. -/
def tokens : Traced (Except LexError (List Token)) :=
  let lexer := Lexer.start s.config.recognizers false s.file.chars
  if s.config.checkOperators then TokenStream.collect (OperatorCheck.of lexer)
  else TokenStream.collect lexer

def lex : Traced (Outcome (Option (List Token))) := do
  match ← s.tokens with
  | .ok tokens => .note (.lexed tokens.length) (pure (s.silent (some tokens)))
  | .error e =>
    pure (s.report .error none (Severity.error.reportAt s.file (e.map LexErrorKind.message)))

def listing (tokens : List Token) : String :=
  String.join (tokens.map fun t => t.value.render ++ "\n")

/-- Lexes the whole file and lists its tokens; after an error the list is empty. -/
def listTokens : Traced (Outcome String) := do
  let outcome ← s.lex
  pure { outcome with result := (outcome.result.map listing).getD "" }

def check (p : Program) : Traced (Outcome (Option Bindings)) := do
  match ← p.check with
  | .ok bindings => pure (s.silent (some bindings))
  | .error e => pure (s.report .error none (Severity.error.report e.message))

/-! ## Steps -/

inductive Step where
  | lex
  | listTokens
  | check (p : Program)
  | statistics
  | message (severity : Severity) (text : String)
  | messageAt (severity : Severity) (text : Located String)
  | renew
deriving DecidableEq, Repr

inductive Answer where
  | nothing
  | tokens (result : Option (List Token))
  | listing (text : String)
  | bindings (result : Option Bindings)
deriving DecidableEq, Repr

def step : Step → Traced (Outcome Answer)
  | .lex => (fun o => { o with result := .tokens o.result }) <$> s.lex
  | .listTokens => (fun o => { o with result := .listing o.result }) <$> s.listTokens
  | .check p => (fun o => { o with result := .bindings o.result }) <$> s.check p
  | .statistics => pure { s.statistics with result := .nothing }
  | .message severity text => pure { s.message severity text with result := .nothing }
  | .messageAt severity text => pure { s.messageAt severity text with result := .nothing }
  | .renew => pure { s.renew with result := .nothing }

/-- Whether the step has an outcome.  The places of lexical errors lie in the file, so only a message
that was given a place can fail to have one. -/
def Step.isFeasible (file : SourceFile) : Step → Bool
  | .messageAt _ text => (Snippet.of? file text.span).isSome
  | .lex | .listTokens | .check _ | .statistics | .message _ _ | .renew => true

def run : List Step → Session → Traced (List (Outcome Answer))
  | [], _ => pure []
  | step :: steps, s =>
    if step.isFeasible s.file then do
      let outcome ← s.step step
      let rest ← run steps outcome.session
      pure (outcome :: rest)
    else pure []

end Session
end Frontend
