import Frontend.Syntax.TypeExpr

/-!
# Types

The types of MH are the integers, the booleans and the functions.  Two types are the same only if
they are built in the same way, so equality of types is equality of values.

Every type has the form `A₁ → … → Aₘ → R` with a result `R` that is no function; `Ty.arrows` builds
such a type from its argument types, and the argument types an equation can bind are found by
peeling them off with `Ty.arg?` and `Ty.result?`.
-/

namespace Frontend

inductive Ty where
  | integer
  | bool
  | function (arg result : Ty)
deriving DecidableEq, Repr

namespace Ty

def ofExpr : TypeExpr → Ty
  | .integer => integer
  | .bool => bool
  | .function arg result => function (ofExpr arg) (ofExpr result)

def isInteger (t : Ty) : Bool := decide (t = integer)

def isBool (t : Ty) : Bool := decide (t = bool)

def isFunction : Ty → Bool
  | function _ _ => true
  | _ => false

def arg? : Ty → Option Ty
  | function arg _ => some arg
  | _ => none

def result? : Ty → Option Ty
  | function _ result => some result
  | _ => none

def arrows (args : List Ty) (result : Ty) : Ty := args.foldr function result

/-- The text of a type in messages; the arrow associates to the right. -/
def render : Ty → String
  | integer => "Integer"
  | bool => "Bool"
  | function arg result =>
    if arg.isFunction then "(" ++ arg.render ++ ") -> " ++ result.render
    else arg.render ++ " -> " ++ result.render

@[simp] theorem isInteger_iff {t : Ty} : t.isInteger = true ↔ t = integer := decide_eq_true_iff

@[simp] theorem isBool_iff {t : Ty} : t.isBool = true ↔ t = bool := decide_eq_true_iff

theorem isFunction_iff {t : Ty} : t.isFunction = true ↔ ∃ a r, t = function a r := by
  cases t <;> simp [isFunction]

@[simp] theorem arrows_nil (result : Ty) : arrows [] result = result := rfl

@[simp] theorem arrows_cons (a : Ty) (args : List Ty) (result : Ty) :
    arrows (a :: args) result = function a (arrows args result) := rfl

theorem arrows_append (as bs : List Ty) (result : Ty) :
    arrows (as ++ bs) result = arrows as (arrows bs result) := by
  simp [arrows]

end Ty
end Frontend
