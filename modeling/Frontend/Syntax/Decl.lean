import Frontend.Syntax.Exp
import Frontend.Syntax.TypeExpr

/-!
# Declarations and programs

A declaration is a type signature together with the equation that defines the name.  Nothing in the
syntax makes the two speak of the same name.  A program is the list of its declarations in the order
in which they were written.
-/

namespace Frontend

/-- A type signature, `f :: Integer -> Integer ;`. -/
structure Signature where
  name : String
  type : TypeExpr
deriving DecidableEq, Repr

/-- A defining equation, `f x = x + 1 ;`. -/
structure Equation where
  name : String
  args : List String
  body : Exp
deriving DecidableEq, Repr

structure Decl where
  signature : Signature
  equation : Equation
deriving DecidableEq, Repr

structure Program where
  decls : List Decl
deriving DecidableEq, Repr

def Signature.statement (s : Signature) : String := s.name ++ " :: " ++ s.type.render

def Signature.render (s : Signature) : String := s.statement ++ " ;"

/-- What is defined, applied to the names of its arguments. -/
def Equation.head (e : Equation) : String := " ".intercalate (e.name :: e.args)

def Equation.render (e : Equation) : String := e.head ++ " = " ++ e.body.render ++ " ;"

/-- The function that an equation defines. -/
def Equation.closure (e : Equation) : Exp := .closure e.args e.body

def Decl.render (d : Decl) : String := d.signature.render ++ "\n" ++ d.equation.render

def Program.signatures (p : Program) : List Signature := p.decls.map (·.signature)

end Frontend
