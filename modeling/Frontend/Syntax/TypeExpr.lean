/-!
# Type expressions

A type expression is a type as it is written in a signature.  The arrow associates to the right, so
`Integer -> Integer -> Bool` is a function from integers to functions, and only the argument of an
arrow is ever put in parentheses.
-/

namespace Frontend

inductive TypeExpr where
  | integer
  | bool
  | function (arg result : TypeExpr)
deriving DecidableEq, Repr

namespace TypeExpr

def render : TypeExpr → String
  | integer => "Integer"
  | bool => "Bool"
  | function (function a r) result =>
    "(" ++ (function a r).render ++ ") -> " ++ result.render
  | function arg result => arg.render ++ " -> " ++ result.render

end TypeExpr
end Frontend
