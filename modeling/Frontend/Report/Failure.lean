import Frontend.Lexing.Lexeme
import Frontend.Source.File
import Frontend.Typing.Error

/-!
# Failures

Whatever can go wrong in the front end, in the form in which it is told to the user: a message, and
the messages of what caused it.  A lexical error at a place is caused by the lexical error as such,
and an error of the checker that is a type error is caused by that type error.
-/

namespace Frontend

inductive Failure where
  | encoding (e : EncodingError)
  | lexical (e : LexError)
  | check (e : CheckError)
deriving DecidableEq, Repr

namespace Failure

def message : Failure → String
  | encoding e => e.message
  | lexical e => e.message
  | check e => e.message

def causes : Failure → List String
  | encoding _ => []
  | lexical e => [e.value.message]
  | check (.typeError e) => [e.message]
  | check _ => []

/-- One line for the failure and one for each cause. -/
def render (f : Failure) : String :=
  "error: " ++ f.message ++ "\n" ++
    String.join (f.causes.map fun cause => "caused by: " ++ cause ++ "\n")

end Failure
end Frontend
