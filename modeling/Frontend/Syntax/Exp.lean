/-!
# Expressions

The expressions of MH.  Names, numerals, booleans and operators are kept as the texts they were
written with; whether a numeral consists of digits, say, is for the type checker to find out.

No program text contains a lambda.  Lambdas arise when a definition with arguments is turned into
its closure: `Exp.closure args body` takes the arguments one after the other, the first one
outermost.  Its counterpart `Exp.apply` applies a function to several arguments, the first one
innermost.
-/

namespace Frontend

inductive Exp where
  | var (name : String)
  | num (digits : String)
  | bool (text : String)
  | app (function arg : Exp)
  | infixOp (op : String) (lhs rhs : Exp)
  | cond (test yes no : Exp)
  | lambda (arg : String) (body : Exp)
deriving DecidableEq, Repr

inductive ExpKind where
  | var
  | num
  | bool
  | app
  | infixOp
  | cond
  | lambda
deriving DecidableEq, Repr

def ExpKind.name : ExpKind → String
  | var => "Var"
  | num => "Num"
  | bool => "Boolean"
  | app => "App"
  | infixOp => "Infix"
  | cond => "If"
  | lambda => "Lambda"

namespace Exp

def kind : Exp → ExpKind
  | var _ => .var
  | num _ => .num
  | bool _ => .bool
  | app _ _ => .app
  | infixOp _ _ _ => .infixOp
  | cond _ _ _ => .cond
  | lambda _ _ => .lambda

def apply (f : Exp) (args : List Exp) : Exp := args.foldl app f

/-- The function that takes the arguments from left to right and yields `body`. -/
def closure (args : List String) (body : Exp) : Exp := args.foldr lambda body

/-- The text of an expression in messages.  Whatever has parts stands in parentheses. -/
def render : Exp → String
  | var name => name
  | num digits => digits
  | bool text => text
  | app f a => "(" ++ f.render ++ " " ++ a.render ++ ")"
  | infixOp op l r => "(" ++ l.render ++ " " ++ op ++ " " ++ r.render ++ ")"
  | cond c t e => "(if " ++ c.render ++ " then " ++ t.render ++ " else " ++ e.render ++ ")"
  | lambda x b => "(\\" ++ x ++ " -> " ++ b.render ++ ")"

/-! ## Several arguments -/

@[simp] theorem apply_nil (f : Exp) : f.apply [] = f := rfl

@[simp] theorem apply_cons (f a : Exp) (args : List Exp) :
    f.apply (a :: args) = (f.app a).apply args := rfl

@[simp] theorem closure_nil (body : Exp) : closure [] body = body := rfl

@[simp] theorem closure_cons (x : String) (args : List String) (body : Exp) :
    closure (x :: args) body = lambda x (closure args body) := rfl

end Exp
end Frontend
