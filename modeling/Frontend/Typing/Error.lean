import Frontend.Syntax.Exp
import Frontend.Typing.Ty

/-!
# What the type checker reports

A `TypeError` is a rule of the type system that an expression or an equation breaks.  A `CheckError`
is either one of them or has to do with names: one that nothing defines, one that is defined twice,
or a signature that goes with the equation of another name.
-/

namespace Frontend

inductive TypeError where
  | nonDigitInNumeral (literal : String) (c : Char)
  | notABoolean (literal : String)
  | notAFunction (type : Ty)
  | argumentMismatch (expected found : Ty)
  | operandsNotInteger (op : String) (left right : Ty)
  | unknownOperator (op : String)
  | conditionNotBool (found : Ty)
  | branchMismatch (yes no : Ty)
  | tooManyArguments (count : Nat) (type : Ty)
  | wrongResultType (name : String) (expected found : Ty)
  | malformed (kind : ExpKind)
deriving DecidableEq, Repr

inductive CheckError where
  | typeError (e : TypeError)
  | unknownVariable (name : String)
  | duplicatedVariable (name : String)
  | nameMismatch (signature equation : String)
deriving DecidableEq, Repr

/-! ## Results

Whatever may fail is chained so that the first error ends it. -/

theorem ok_bind_iff {ε α β : Type} {x : Except ε α} {f : α → Except ε β} {b : β} :
    x >>= f = .ok b ↔ ∃ a, x = .ok a ∧ f a = .ok b := by
  cases x <;> simp [bind, Except.bind]

theorem ok_mapError_iff {ε ε' α : Type} {x : Except ε α} {f : ε → ε'} {a : α} :
    x.mapError f = .ok a ↔ x = .ok a := by
  cases x with
  | error => exact ⟨nofun, nofun⟩
  | ok => exact ⟨fun h => congrArg Except.ok (Except.ok.inj h),
      fun h => congrArg Except.ok (Except.ok.inj h)⟩

/-! ## Messages -/

private def quoted (s : String) : String := "'" ++ s ++ "'"

def TypeError.message : TypeError → String
  | nonDigitInNumeral literal c =>
    "non-digit character " ++ quoted (String.singleton c) ++ " found in " ++ quoted literal
  | notABoolean literal => quoted literal ++ " is not a boolean"
  | notAFunction type => "expression of type " ++ type.render ++ " cannot be applied"
  | argumentMismatch expected found =>
    "expected argument of type " ++ expected.render ++ ", found " ++ found.render
  | operandsNotInteger op left right =>
    "operands of " ++ quoted op ++ " must be of type Integer, found " ++ left.render ++ " and " ++
      right.render
  | unknownOperator op => "infix operator " ++ quoted op ++ " is not in the language"
  | conditionNotBool found => "condition must be of type Bool, found " ++ found.render
  | branchMismatch yes no => "branches have different types " ++ yes.render ++ " and " ++ no.render
  | tooManyArguments count type =>
    "too many function arguments (" ++ toString count ++ ") for type " ++ type.render
  | wrongResultType name expected found =>
    "right-hand side of " ++ quoted name ++ " has type " ++ found.render ++ ", expected " ++
      expected.render
  | malformed kind => "expression is malformed (" ++ kind.name ++ ")"

def CheckError.message : CheckError → String
  | typeError e => "type error: " ++ e.message
  | unknownVariable name => "unknown variable " ++ quoted name
  | duplicatedVariable name => "variable " ++ quoted name ++ " is already defined"
  | nameMismatch signature equation =>
    "type signature for " ++ quoted signature ++ " is followed by a definition of " ++
      quoted equation

end Frontend
