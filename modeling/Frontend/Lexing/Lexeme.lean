import Frontend.Source.Span
import Frontend.Text.Unicode
import Frontend.Text.Escape

/-!
# Lexemes, tokens and lexical errors

A lexeme is a piece of source text together with the class it was recognized as.  A class is known
by its name alone: the literals of the language have their own text as the name of their class, so
the literal `SYM` would be of the same class as the operators.  Lexemes of the class with the empty
name are recognized only to be left out.

A token is a lexeme with its span.  What a lexer yields is an `Item`: a token or a lexical error.
-/

namespace Frontend

structure TokenClass where
  name : String
deriving DecidableEq, Repr

namespace TokenClass

def identifier : TokenClass := ⟨"VAR"⟩

def numeral : TokenClass := ⟨"NUM"⟩

def boolean : TokenClass := ⟨"BOOLEAN"⟩

def operator : TokenClass := ⟨"SYM"⟩

def discarded : TokenClass := ⟨""⟩

/-- The class of a literal is named by its text. -/
def literal (text : List Char) : TokenClass := ⟨String.ofList text⟩

end TokenClass

structure Lexeme where
  text : String
  tokenClass : TokenClass
deriving DecidableEq, Repr

namespace Lexeme

def isDiscarded (l : Lexeme) : Bool := decide (l.tokenClass = .discarded)

def render (l : Lexeme) : String :=
  "\"" ++ l.text ++ "\" of class \"" ++ l.tokenClass.name ++ "\""

end Lexeme

abbrev Token := Located Lexeme

/-! ## Errors -/

inductive LexErrorKind where
  /-- No lexeme starts with this character. -/
  | unexpectedCharacter (c : Char)
  /-- The language has no operator with this text. -/
  | unknownOperator (text : String)
deriving DecidableEq, Repr

namespace LexErrorKind

/-- What a message calls a character.  A character that would be hard to read between quotes has a
name, and white space and control characters are announced as such. -/
def describe (c : Char) : String :=
  if c = '\n' then "newline"
  else if c = '\\' then "backslash"
  else if c = '\'' then "single quote"
  else if c = '"' then "double quote"
  else if Unicode.isWhiteSpace c then "whitespace '" ++ Escape.char c ++ "'"
  else if Unicode.isControl c then "control character '" ++ Escape.char c ++ "'"
  else "character '" ++ Escape.char c ++ "'"

def message : LexErrorKind → String
  | unexpectedCharacter c => "Unexpected " ++ describe c
  | unknownOperator text => "Unknown symbol `" ++ text ++ "`"

end LexErrorKind

abbrev LexError := Located LexErrorKind

def LexError.message (e : LexError) : String := e.render LexErrorKind.message

abbrev Item := Except LexError Token

namespace Item

def span : Item → Span
  | .ok token => token.span
  | .error e => e.span

/-- What an item says, wherever it stands. -/
def value : Item → Except LexErrorKind Lexeme
  | .ok token => .ok token.value
  | .error e => .error e.value

end Item

end Frontend
