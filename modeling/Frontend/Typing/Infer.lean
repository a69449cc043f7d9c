import Frontend.Typing.Env

/-!
# The types of expressions

The type of an expression follows from the types of its parts by one rule for each kind of
expression.  The rules are functions: given the types of the parts, a rule yields the type of the
whole or the error it finds.  `Exp.infer` applies them from the leaves to the root, the parts of an
expression from left to right, and stops at the first error.

There is no rule for lambdas, and nothing inside of one is looked at.
-/

namespace Frontend

/-! ## The rules -/

namespace TypeRule

/-- A numeral has digits only.  The empty one is not told apart. -/
def numeral (digits : String) : Except TypeError Ty :=
  match digits.toList.find? fun c => !c.isDigit with
  | some c => .error (.nonDigitInNumeral digits c)
  | none => .ok .integer

def boolean (text : String) : Except TypeError Ty :=
  if text = "True" ∨ text = "False" then .ok .bool else .error (.notABoolean text)

/-- A function takes arguments of its argument type. -/
def application (function arg : Ty) : Except TypeError Ty :=
  match function with
  | .function expected result =>
    if expected = arg then .ok result else .error (.argumentMismatch expected arg)
  | other => .error (.notAFunction other)

/-- Operators compute with integers; two of them compare. -/
def operation (op : String) (left right : Ty) : Except TypeError Ty :=
  if left.isInteger && right.isInteger then
    if op = "==" ∨ op = "<=" then .ok .bool
    else if op = "+" ∨ op = "-" then .ok .integer
    else .error (.unknownOperator op)
  else .error (.operandsNotInteger op left right)

/-- Both branches of a conditional have the type of the whole. -/
def conditional (test yes no : Ty) : Except TypeError Ty :=
  if test.isBool then if yes = no then .ok yes else .error (.branchMismatch yes no)
  else .error (.conditionNotBool test)

theorem numeral_eq_ok_iff {digits : String} {type : Ty} :
    numeral digits = .ok type ↔ (∀ c ∈ digits.toList, c.isDigit = true) ∧ type = .integer := by
  unfold numeral
  split
  · next c h =>
    have hc : c.isDigit = false := by simpa using List.find?_some h
    refine ⟨fun h' => absurd h' (by simp), fun h' => ?_⟩
    rw [h'.1 c (List.mem_of_find?_eq_some h)] at hc
    contradiction
  · next h =>
    have hd : ∀ c ∈ digits.toList, c.isDigit = true := by simpa using h
    exact ⟨fun h' => ⟨hd, (Except.ok.inj h').symm⟩, fun h' => congrArg Except.ok h'.2.symm⟩

theorem boolean_eq_ok_iff {text : String} {type : Ty} :
    boolean text = .ok type ↔ (text = "True" ∨ text = "False") ∧ type = .bool := by
  grind [boolean]

theorem operation_eq_ok_iff {op : String} {left right type : Ty} :
    operation op left right = .ok type ↔ left = .integer ∧ right = .integer ∧
      ((op = "==" ∨ op = "<=") ∧ type = .bool ∨ (op = "+" ∨ op = "-") ∧ type = .integer) := by
  have hl := @Ty.isInteger_iff left
  have hr := @Ty.isInteger_iff right
  grind [operation]

theorem application_eq_ok_iff {function arg type : Ty} :
    application function arg = .ok type ↔ function = .function arg type := by
  unfold application
  split
  · split <;> simp_all
  · next h => simpa using h arg type

theorem conditional_eq_ok_iff {test yes no type : Ty} :
    conditional test yes no = .ok type ↔ test = .bool ∧ yes = type ∧ no = type := by
  have := @Ty.isBool_iff test
  grind [conditional]

end TypeRule

/-! ## Inference -/

def Exp.infer (env : TypeEnv) : Exp → Except CheckError Ty
  | .var name => env.typeOf name
  | .num digits => (TypeRule.numeral digits).mapError .typeError
  | .bool text => (TypeRule.boolean text).mapError .typeError
  | .app f a => do
    let function ← f.infer env
    let arg ← a.infer env
    (TypeRule.application function arg).mapError .typeError
  | .infixOp op l r => do
    let left ← l.infer env
    let right ← r.infer env
    (TypeRule.operation op left right).mapError .typeError
  | .cond c t e => do
    let test ← c.infer env
    let yes ← t.infer env
    let no ← e.infer env
    (TypeRule.conditional test yes no).mapError .typeError
  | .lambda x b => .error (.typeError (.malformed (Exp.lambda x b).kind))

end Frontend
